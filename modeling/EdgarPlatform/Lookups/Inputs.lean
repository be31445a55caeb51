import EdgarPlatform.Library.Agreed
import EdgarPlatform.Lookups.Scope
import EdgarPlatform.Records.Contents

/-!
# The retained inputs

Readings, decisions, identities, deferred records and occurrences are kept as evidence, each under its type and its id, and listed in an index by what they name. An input that is kept is never written over by another: under one id, one revision of a source record and one natural key of a deferred record there is one content.
-/

namespace EdgarPlatform.Lookups

open Records (Json Object readText readOptionalValue readArray readFields hasValue writeJson writeSortedJson)

structure Inputs where
  readings : List Object
  decisions : List Object
  identities : List Object
  deferred : List Object := []
  occurrences : List Object := []

/-- What the loops over the inputs hold. -/
structure History where
  evidence : Store := .empty
  indexes : Store := .empty

def contradictory : String := "Retained input identity has contradictory content"

def retainInput (held : Store) (recordType id bodyJson : String) : Except String Store :=
  Agreed.retain contradictory held (toLex (recordType, id), bodyJson)

def describeReference (recordType id : String) : String :=
  writeSortedJson (.obj [("type", .str recordType), ("id", .str id), ("immutable", .bool true)])

def retainReference (indexes : Store) (name key recordType id : String) : Store :=
  indexes.insert (toLex (lookupType name [key], id)) (describeReference recordType id)

def relationshipSubjects (subject : String) (raw : Json) : Except String (List String) := do
  let relationship ← readFields raw
  let source ← if hasValue relationship "source_subject" then readText relationship "source_subject" else .ok subject
  let target ← optionalKey relationship "target_subject"
  .ok (source :: target)

/-- The records a reading's relationships are about, each once. -/
def namedSubjects (subject : String) (reading : Object) : Except String (List String) := do
  let relationships ← readArray reading "relationships"
  let named ← relationships.mapM (relationshipSubjects subject)
  .ok (SortedMap.ofList (named.flatten.map fun name => (name, ()))).keys

def revisionText (reading : Object) : String := writeJson false (readOptionalValue reading "revision")

def mappingText (reading : Object) : String := writeJson false ((reading.get? "mapping_version").getD (.num "1"))

def retainReading (history : History) (reading : Object) : Except String History := do
  let id ← readText reading "assertion_id"
  let subject ← readText reading "subject"
  let evidence ← retainInput history.evidence "source-reading" id (writeSortedJson (Object.toJson reading))
  let indexes := retainReference history.indexes "record_readings" subject "source-reading" id
  let sourceCode ← readText reading "source_code"
  let recordKey ← readText reading "record_key"
  let versionKey := lookupType "record_revision" [sourceCode, recordKey, revisionText reading, mappingText reading]
  let indexes ← retainInput indexes versionKey "reading" (describeReference "source-reading" id)
  let indexes := retainReference indexes "source_readings" sourceCode "source-reading" id
  let named ← namedSubjects subject reading
  .ok
    { evidence
      indexes := named.foldl (fun held target => retainReference held "related_readings" target "source-reading" id) indexes }

/-- The fields by which a decision names records, entities and decisions. -/
def namingFields : List String := ["subject", "entity_id", "left", "right", "target", "decision_id"]

def retainDecision (history : History) (decision : Object) : Except String History := do
  let id ← readText decision "decision_id"
  let evidence ← retainInput history.evidence "decision" id (writeSortedJson (Object.toJson decision))
  let indexes ← namingFields.foldlM (fun held name => do
    let keys ← optionalKey decision name
    Except.ok (keys.foldl (fun held key => retainReference held "related_decisions" key "decision" id) held)) history.indexes
  let operation ← readText decision "operation"
  if operation = "retire_source" then do
    let sourceCode ← readText decision "source_code"
    .ok { evidence, indexes := retainReference indexes "source_retirements" sourceCode "decision" id }
  else .ok { evidence, indexes }

def retainIdentity (history : History) (identity : Object) : Except String History := do
  let id ← readText identity "entity_id"
  let evidence ← retainInput history.evidence "identity" id (writeSortedJson (Object.toJson identity))
  .ok { history with evidence }

def retainDeferred (history : History) (deferred : Object) : Except String History := do
  let id ← readText deferred "deferred_id"
  let sourceCode ← readText deferred "source_code"
  let publicationKey ← readText deferred "publication_key"
  let locator ← readText deferred "record_locator"
  let evidence ← retainInput history.evidence "deferred-record" id (writeSortedJson (Object.toJson deferred))
  let naturalKey := lookupType "deferred_record" [sourceCode, publicationKey, locator]
  let indexes ← retainInput history.indexes naturalKey "record" (describeReference "deferred-record" id)
  .ok { evidence, indexes }

def retainOccurrence (digest : String → String) (history : History) (occurrence : Object) : Except String History := do
  let assertion ← readText occurrence "assertion_id"
  let body := writeSortedJson (Object.toJson occurrence)
  let id := digest body
  let evidence ← retainInput history.evidence "source-occurrence" id body
  .ok { evidence, indexes := retainReference history.indexes "reading_occurrences" assertion "source-occurrence" id }

def retainInputs (digest : String → String) (input : Inputs) : Except String History := do
  let history ← input.readings.foldlM retainReading {}
  let history ← input.decisions.foldlM retainDecision history
  let history ← input.identities.foldlM retainIdentity history
  let history ← input.deferred.foldlM retainDeferred history
  input.occurrences.foldlM (retainOccurrence digest) history

def storedJson (entry : Key × String) : Json :=
  .obj [("type", .str (ofLex entry.1).1), ("id", .str (ofLex entry.1).2), ("body_json", .str entry.2)]

def History.text (history : History) : String :=
  writeJson false (.arr [.arr (history.evidence.entries.map storedJson), .arr (history.indexes.entries.map storedJson)])

def prepareRecordHistory (digest : String → String) (input : Inputs) : Except String String :=
  (retainInputs digest input).map History.text

inductive Kind
  | reading
  | decision
  | identity
  | deferred
  | occurrence
  deriving DecidableEq

def Kind.recordType : Kind → String
  | .reading => "source-reading"
  | .decision => "decision"
  | .identity => "identity"
  | .deferred => "deferred-record"
  | .occurrence => "source-occurrence"

/-- A place in the index. -/
structure Mark where
  name : String
  keys : List String
  slot : String
  /-- It is for one input alone. -/
  once : Bool

def Mark.listing (id name key : String) : Mark := { name, keys := [key], slot := id, once := false }

/-- An input, by what is read of it. -/
structure Retained where
  kind : Kind
  id : String
  bodyJson : String
  marks : List Mark

def Mark.key (mark : Mark) : Key := toLex (lookupType mark.name mark.keys, mark.slot)

def Retained.evidenceEntry (kept : Retained) : Key × String := (toLex (kept.kind.recordType, kept.id), kept.bodyJson)

def Retained.reference (kept : Retained) : String := describeReference kept.kind.recordType kept.id

def Retained.markEntry (kept : Retained) (mark : Mark) : Bool × Key × String := (mark.once, mark.key, kept.reference)

def Retained.indexEntries (kept : Retained) : List (Key × String) := kept.marks.map fun mark => (mark.key, kept.reference)

def readReading (reading : Object) : Except String Retained := do
  let id ← readText reading "assertion_id"
  let subject ← readText reading "subject"
  let sourceCode ← readText reading "source_code"
  let recordKey ← readText reading "record_key"
  let named ← namedSubjects subject reading
  .ok
    { kind := .reading
      id
      bodyJson := writeSortedJson (Object.toJson reading)
      marks := .listing id "record_readings" subject ::
        { name := "record_revision"
          keys := [sourceCode, recordKey, revisionText reading, mappingText reading]
          slot := "reading"
          once := true } ::
        .listing id "source_readings" sourceCode :: named.map (.listing id "related_readings") }

def retiredSource (decision : Object) : Except String (List String) := do
  let operation ← readText decision "operation"
  if operation = "retire_source" then (readText decision "source_code").map fun sourceCode => [sourceCode] else .ok []

def readDecision (decision : Object) : Except String Retained := do
  let id ← readText decision "decision_id"
  let named ← namingFields.mapM (optionalKey decision)
  let retired ← retiredSource decision
  .ok
    { kind := .decision
      id
      bodyJson := writeSortedJson (Object.toJson decision)
      marks := named.flatten.map (.listing id "related_decisions") ++ retired.map (.listing id "source_retirements") }

def readIdentity (identity : Object) : Except String Retained := do
  let id ← readText identity "entity_id"
  .ok { kind := .identity, id, bodyJson := writeSortedJson (Object.toJson identity), marks := [] }

def readDeferred (deferred : Object) : Except String Retained := do
  let id ← readText deferred "deferred_id"
  let sourceCode ← readText deferred "source_code"
  let publicationKey ← readText deferred "publication_key"
  let locator ← readText deferred "record_locator"
  .ok
    { kind := .deferred
      id
      bodyJson := writeSortedJson (Object.toJson deferred)
      marks := [{ name := "deferred_record", keys := [sourceCode, publicationKey, locator], slot := "record", once := true }] }

def readOccurrence (digest : String → String) (occurrence : Object) : Except String Retained := do
  let assertion ← readText occurrence "assertion_id"
  let body := writeSortedJson (Object.toJson occurrence)
  .ok
    { kind := .occurrence
      id := digest body
      bodyJson := body
      marks := [.listing (digest body) "reading_occurrences" assertion] }

abbrev Item := Kind × Object

def readItem (digest : String → String) : Item → Except String Retained
  | (.reading, body) => readReading body
  | (.decision, body) => readDecision body
  | (.identity, body) => readIdentity body
  | (.deferred, body) => readDeferred body
  | (.occurrence, body) => readOccurrence digest body

def retainItem (digest : String → String) (history : History) : Item → Except String History
  | (.reading, body) => retainReading history body
  | (.decision, body) => retainDecision history body
  | (.identity, body) => retainIdentity history body
  | (.deferred, body) => retainDeferred history body
  | (.occurrence, body) => retainOccurrence digest history body

def Inputs.items (input : Inputs) : List Item :=
  input.readings.map (Kind.reading, ·) ++ (input.decisions.map (Kind.decision, ·) ++ (input.identities.map (Kind.identity, ·) ++
    (input.deferred.map (Kind.deferred, ·) ++ input.occurrences.map (Kind.occurrence, ·))))

theorem retainInputs_eq (digest : String → String) (input : Inputs) :
    retainInputs digest input = input.items.foldlM (retainItem digest) {} := by
  simp only [Inputs.items, List.foldlM_append, List.foldlM_map]
  rfl

def retain (history : History) (kept : Retained) : Except String History := do
  let evidence ← Agreed.put contradictory history.evidence (true, kept.evidenceEntry)
  let indexes ← (kept.marks.map kept.markEntry).foldlM (Agreed.put contradictory) history.indexes
  .ok { evidence, indexes }

theorem foldlM_listing (kept : Retained) (name : String) (keys : List String) (indexes : Store) :
    ((keys.map (Mark.listing kept.id name)).map kept.markEntry).foldlM (Agreed.put contradictory) indexes =
      .ok (keys.foldl (fun held key => retainReference held name key kept.kind.recordType kept.id) indexes) := by
  induction keys generalizing indexes with
  | nil => rfl
  | cons key rest ih => exact ih (retainReference indexes name key kept.kind.recordType kept.id)

variable {history next : History}

theorem retainIdentity_eq_ok {identity : Object} :
    retainIdentity history identity = .ok next ↔ ∃ kept, readIdentity identity = .ok kept ∧ retain history kept = .ok next := by
  simp only [retainIdentity, readIdentity, retain, Except.bind_eq_ok, Except.ok.injEq]
  constructor
  · rintro ⟨id, hid, evidence, hevidence, rfl⟩
    exact ⟨_, ⟨id, hid, rfl⟩, evidence, hevidence, _, rfl, rfl⟩
  · rintro ⟨_, ⟨id, hid, rfl⟩, evidence, hevidence, indexes, hindexes, rfl⟩
    cases hindexes
    exact ⟨id, hid, evidence, hevidence, rfl⟩

theorem retainOccurrence_eq_ok {digest : String → String} {occurrence : Object} :
    retainOccurrence digest history occurrence = .ok next ↔
      ∃ kept, readOccurrence digest occurrence = .ok kept ∧ retain history kept = .ok next := by
  simp only [retainOccurrence, readOccurrence, retain, Except.bind_eq_ok, Except.ok.injEq]
  constructor
  · rintro ⟨assertion, hassertion, evidence, hevidence, rfl⟩
    exact ⟨_, ⟨assertion, hassertion, rfl⟩, evidence, hevidence, _, rfl, rfl⟩
  · rintro ⟨_, ⟨assertion, hassertion, rfl⟩, evidence, hevidence, indexes, hindexes, rfl⟩
    cases hindexes
    exact ⟨assertion, hassertion, evidence, hevidence, rfl⟩

theorem retainDeferred_eq_ok {deferred : Object} :
    retainDeferred history deferred = .ok next ↔ ∃ kept, readDeferred deferred = .ok kept ∧ retain history kept = .ok next := by
  simp only [retainDeferred, readDeferred, retain, Except.bind_eq_ok, Except.ok.injEq]
  constructor
  · rintro ⟨id, hid, source, hsource, publication, hpublication, locator, hlocator, evidence, hevidence, indexes, hindexes, rfl⟩
    refine ⟨_, ⟨id, hid, source, hsource, publication, hpublication, locator, hlocator, rfl⟩, evidence, hevidence, indexes, ?_, rfl⟩
    exact Runs.foldlM_cons_eq_ok.2 ⟨indexes, hindexes, rfl⟩
  · rintro ⟨_, ⟨id, hid, source, hsource, publication, hpublication, locator, hlocator, rfl⟩, evidence, hevidence, indexes,
      hindexes, rfl⟩
    obtain ⟨mid, hmid, hlast⟩ := Runs.foldlM_cons_eq_ok.1 hindexes
    cases hlast
    exact ⟨id, hid, source, hsource, publication, hpublication, locator, hlocator, evidence, hevidence, indexes, hmid, rfl⟩

theorem retainReading_eq_ok {reading : Object} :
    retainReading history reading = .ok next ↔ ∃ kept, readReading reading = .ok kept ∧ retain history kept = .ok next := by
  simp only [retainReading, readReading, retain, Except.bind_eq_ok, Except.ok.injEq]
  constructor
  · rintro ⟨id, hid, subject, hsubject, evidence, hevidence, source, hsource, record, hrecord, indexes, hindexes, named, hnamed, rfl⟩
    refine ⟨_, ⟨id, hid, subject, hsubject, source, hsource, record, hrecord, named, hnamed, rfl⟩, evidence, hevidence, _, ?_, rfl⟩
    refine Runs.foldlM_cons_eq_ok.2 ⟨_, rfl, Runs.foldlM_cons_eq_ok.2 ⟨indexes, hindexes, Runs.foldlM_cons_eq_ok.2 ⟨_, rfl, ?_⟩⟩⟩
    exact foldlM_listing ⟨.reading, id, "", []⟩ "related_readings" named _
  · rintro ⟨_, ⟨id, hid, subject, hsubject, source, hsource, record, hrecord, named, hnamed, rfl⟩, evidence, hevidence, indexes,
      hindexes, rfl⟩
    obtain ⟨_, hfirst, hindexes⟩ := Runs.foldlM_cons_eq_ok.1 hindexes
    cases hfirst
    obtain ⟨mid, hmid, hindexes⟩ := Runs.foldlM_cons_eq_ok.1 hindexes
    obtain ⟨_, hthird, hindexes⟩ := Runs.foldlM_cons_eq_ok.1 hindexes
    cases hthird
    cases (foldlM_listing ⟨.reading, id, "", []⟩ "related_readings" named _).symm.trans hindexes
    exact ⟨id, hid, subject, hsubject, evidence, hevidence, source, hsource, record, hrecord, mid, hmid, named, hnamed, rfl⟩

theorem foldlM_optionalKey {decision : Object} {names : List String} {put : Store → String → Store} {indexes next : Store} :
    names.foldlM (fun held name => do
      let keys ← optionalKey decision name
      Except.ok (keys.foldl put held)) indexes = .ok next ↔
      ∃ named, names.mapM (optionalKey decision) = .ok named ∧ next = named.flatten.foldl put indexes := by
  induction names generalizing indexes with
  | nil =>
      rw [Runs.foldlM_nil_eq_ok]
      constructor
      · exact fun h => ⟨[], rfl, h.symm⟩
      · rintro ⟨_, hnamed, rfl⟩
        cases hnamed
        rfl
  | cons name rest ih =>
      rw [Runs.foldlM_cons_eq_ok]
      simp only [Except.bind_eq_ok, Except.ok.injEq, ih, Runs.mapM_eq_ok, List.forall₂_cons_left_iff]
      constructor
      · rintro ⟨_, ⟨keys, hkeys, rfl⟩, named, hnamed, rfl⟩
        exact ⟨keys :: named, ⟨keys, named, hkeys, hnamed, rfl⟩, by rw [List.flatten_cons, List.foldl_append]⟩
      · rintro ⟨_, ⟨keys, named, hkeys, hnamed, rfl⟩, rfl⟩
        exact ⟨_, ⟨keys, hkeys, rfl⟩, named, hnamed, by rw [List.flatten_cons, List.foldl_append]⟩

theorem retainDecision_eq_ok {decision : Object} :
    retainDecision history decision = .ok next ↔ ∃ kept, readDecision decision = .ok kept ∧ retain history kept = .ok next := by
  have hlast : ∀ {evidence indexes : Store} {id : String},
      (do let operation ← readText decision "operation"
          if operation = "retire_source" then do
            let sourceCode ← readText decision "source_code"
            Except.ok (History.mk evidence (retainReference indexes "source_retirements" sourceCode "decision" id))
          else .ok ⟨evidence, indexes⟩) = .ok next ↔
        ∃ retired, retiredSource decision = .ok retired ∧
          next = ⟨evidence, retired.foldl (fun held key => retainReference held "source_retirements" key "decision" id) indexes⟩ := by
    intro evidence indexes id
    simp only [retiredSource, Except.bind_eq_ok]
    constructor
    · rintro ⟨operation, hoperation, h⟩
      split_ifs at h with hretire
      · obtain ⟨source, hsource, heq⟩ := Except.bind_eq_ok.1 h
        cases heq
        exact ⟨[source], ⟨operation, hoperation, by rw [if_pos hretire, hsource]; rfl⟩, rfl⟩
      · cases h
        exact ⟨[], ⟨operation, hoperation, if_neg hretire⟩, rfl⟩
    · rintro ⟨retired, ⟨operation, hoperation, h⟩, rfl⟩
      refine ⟨operation, hoperation, ?_⟩
      split_ifs at h ⊢ with hretire
      · obtain ⟨source, hsource, rfl⟩ := Records.map_eq_ok.1 h
        exact Except.bind_eq_ok.2 ⟨source, hsource, rfl⟩
      · cases h
        rfl
  simp only [retainDecision, readDecision, retain, hlast, foldlM_optionalKey, Except.bind_eq_ok, Except.ok.injEq]
  constructor
  · rintro ⟨id, hid, evidence, hevidence, _, ⟨named, hnamed, rfl⟩, retired, hretired, rfl⟩
    refine ⟨_, ⟨id, hid, named, hnamed, retired, hretired, rfl⟩, evidence, hevidence, _, ?_, rfl⟩
    rw [List.map_append]
    refine Runs.foldlM_append_eq_ok.2 ⟨_, foldlM_listing ⟨.decision, id, "", []⟩ "related_decisions" named.flatten _, ?_⟩
    exact foldlM_listing ⟨.decision, id, "", []⟩ "source_retirements" retired _
  · rintro ⟨_, ⟨id, hid, named, hnamed, retired, hretired, rfl⟩, evidence, hevidence, indexes, hindexes, rfl⟩
    rw [List.map_append] at hindexes
    obtain ⟨_, hfirst, hindexes⟩ := Runs.foldlM_append_eq_ok.1 hindexes
    cases (foldlM_listing ⟨.decision, id, "", []⟩ "related_decisions" named.flatten _).symm.trans hfirst
    cases (foldlM_listing ⟨.decision, id, "", []⟩ "source_retirements" retired _).symm.trans hindexes
    exact ⟨id, hid, evidence, hevidence, _, ⟨named, hnamed, rfl⟩, retired, hretired, rfl⟩

theorem retainItem_eq_ok {digest : String → String} {item : Item} :
    retainItem digest history item = .ok next ↔
      ∃ kept, readItem digest item = .ok kept ∧ retain history kept = .ok next := by
  obtain ⟨kind, body⟩ := item
  cases kind with
  | reading => exact retainReading_eq_ok
  | decision => exact retainDecision_eq_ok
  | identity => exact retainIdentity_eq_ok
  | deferred => exact retainDeferred_eq_ok
  | occurrence => exact retainOccurrence_eq_ok

end EdgarPlatform.Lookups
